import TaoDag.Ghostdag.Segments

namespace TaoDag.Ghostdag.DagEngine

open BlockDag

variable {fr : Reachability.Interval.Fractions} {k : Nat} {genesis b x : Hash} {e e' : DagEngine}
  {qs order order' : List Hash} {d : GhostdagData}

/-- The engines that `add_block` calls make of `e`. -/
inductive Later (fr : Reachability.Interval.Fractions) (e : DagEngine) : DagEngine → Prop
  | refl : Later fr e e
  | add {e₁ e₂ : DagEngine} {b : Hash} {ps : List Hash} (before : Later fr e e₁)
      (origin : blockhash.origin ∉ ps) (run : e₁.addBlock fr b ps = .ok e₂) : Later fr e e₂

theorem Later.rooted (hl : Later fr e e') (h : Rooted fr k genesis e) :
    Rooted fr k genesis e' := by
  induction hl with
  | refl => exact h
  | add _ origin run ih => exact .add ih origin run

theorem Later.trans {e₁ : DagEngine} (h : Later fr e e') (h' : Later fr e' e₁) : Later fr e e₁ := by
  induction h' with
  | refl => exact h
  | add _ origin run ih => exact .add ih origin run

/-- A new block changes no order up to another one. -/
theorem OrderTo.added (ho : OrderTo e x order) (h : Rooted fr k genesis e)
    (hor : x ≠ blockhash.origin) (ha : Added e e' b qs d) : OrderTo e' x order := by
  have inv := h.grown.ready_best.1.toInv
  induction ho with
  | genesis =>
    rw [← ha.genesis]
    exact .genesis
  | @step x d₁ front m hne hd _ hmerge hsorted ih =>
    obtain ⟨hm, _, hsp⟩ := h.merged hne hor hd
    have hxb : x ≠ b := ha.ne_of_mem (mem_blocks.mpr ⟨d₁, hd⟩)
    have hparents : e'.dag.parents x = e.dag.parents x := by
      rw [ha.parents_eq inv, Function.update_of_ne hxb]
    have hkey : ∀ y ∈ m, e'.key y = e.key y := by
      intro y hy
      obtain ⟨p, hp, hreach⟩ := hmerge.sound y hy
      have hmem := inv.index.dag.mem_of_reach hreach (hm.known p hp)
      exact ha.key_of_ne (ha.ne_of_mem hmem)
    apply OrderTo.step
    · rw [ha.genesis]
      exact hne
    · rw [ha.lookup_of_ne hxb]
      exact hd
    · exact ih hsp
    · rw [hparents]
      exact (hm.old ha inv).mergeset.perm (hmerge.unique hm.mergeset)
    · apply hsorted.imp_of_mem
      intro y z hy hz hle
      rw [hkey y hy, hkey z hz]
      exact hle

theorem Later.orderTo (hl : Later fr e e') (h : Rooted fr k genesis e)
    (hor : x ≠ blockhash.origin) (ho : OrderTo e x order) : OrderTo e' x order := by
  induction hl with
  | refl => exact ho
  | add before origin run ih =>
    have hrooted := before.rooted h
    obtain ⟨d, _, _, ha, _⟩ := hrooted.grown.ready_best.1.step (fun hor => absurd hor origin) run
    exact ih.added hrooted hor ha

/-- As long as a block is on the selected chain, the order up to it stays as it is: its past, and
then the block. -/
theorem Later.order_stable (hl : Later fr e e') (h : Rooted fr k genesis e)
    (hor : x ≠ blockhash.origin) (hx : e.dag.OnChain x e.tip) (hx' : e'.dag.OnChain x e'.tip)
    (horder : e.totalOrder = .ok order) (horder' : e'.totalOrder = .ok order') :
    ∃ front rest rest', order = front ++ x :: rest ∧ order' = front ++ x :: rest' ∧
      ∀ y, y ∈ front ↔ Past e.dag.parents y x ∧ y ≠ blockhash.origin := by
  have h' := hl.rooted h
  have hacyclic : ∀ {x}, ¬Past e.dag.parents x x := h.grown.ready_best.1.index.dag.acyclic
  obtain ⟨front, rest, rfl, hfront, _⟩ :=
    (h.orderTo.post horder).split h h.grown.ready_best.2.ne hx hor
  obtain ⟨front', rest', rfl, hfront', _⟩ :=
    (h'.orderTo.post horder').split h' h'.grown.ready_best.2.ne hx' hor
  obtain rfl := hfront'.unique (hl.orderTo h hor hfront)
  have hmem := (hfront.lists h hor).mem
  obtain ⟨before, rfl, hpast⟩ := hfront.last h hor
  refine ⟨before, rest, rest', by simp, by simp, fun y => ?_⟩
  constructor
  · intro hy
    exact ⟨hpast y hy, ((hmem y).mp (List.mem_append_left _ hy)).2⟩
  · rintro ⟨hy, hne⟩
    rcases List.mem_append.mp ((hmem y).mpr ⟨hy.reach, hne⟩) with hy' | hy'
    · exact hy'
    · rw [List.mem_singleton.mp hy'] at hy
      exact absurd hy hacyclic

/-- The order can be cut anywhere: it has the parents of every block before the block. -/
theorem OrderTo.closed {y : Hash} (ho : OrderTo e b order) (h : Rooted fr k genesis e)
    (hor : b ≠ blockhash.origin) {l : List Hash} (hl : l <+: order) (hy : y ∈ l)
    (hne : y ≠ e.genesis) (hx : x ∈ e.dag.parents y) : x ∈ l := by
  have ready := h.grown.ready_best.1
  have hxor : x ≠ blockhash.origin := by
    rintro rfl
    exact h.origin_not_mem (ready.genesis ▸ hne) hx
  have hless := ready.work hx hxor
  induction ho generalizing l with
  | genesis =>
    exact absurd (List.mem_singleton.mp (hl.subset hy)) hne
  | @step b d front m hb hd parent hmerge hsort ih =>
    obtain ⟨hm, _, hsp⟩ := h.merged hb hor hd
    rcases List.prefix_or_prefix_of_prefix hl (List.prefix_append front (m ++ [b])) with hl | hl
    · exact ih hsp hl hy
    obtain ⟨mid, rfl⟩ := hl
    have hmid : mid <+: m ++ [b] := (List.prefix_append_right_inj front).mp hl
    rcases List.mem_append.mp hy with hy | hy
    · exact List.mem_append_left mid (ih hsp List.prefix_rfl hy)
    -- a block that is merged has its parents before the segment or in it
    have hsegment : x ∈ front ∨ x ∈ m := by
      have hbelow : ∃ p ∈ e.dag.parents b, Reach e.dag.parents x p := by
        rcases List.mem_append.mp (hmid.subset hy) with hmem | hmem
        · obtain ⟨p, hp, hreach⟩ := hmerge.sound y hmem
          exact ⟨p, hp, (reach_of_parent hx).trans hreach⟩
        · rw [List.mem_singleton.mp hmem] at hx
          exact ⟨x, hx, .refl⟩
      obtain ⟨p, hp, hreach⟩ := hbelow
      rcases hmerge.complete x p hp hreach with hreach | hmem
      · exact Or.inl (((parent.lists h hsp).mem x).mpr ⟨hreach, hxor⟩)
      · exact Or.inr hmem
    rcases hsegment with hmem | hmem
    · exact List.mem_append_left mid hmem
    refine List.mem_append_right front ?_
    obtain ⟨after, hafter⟩ := hmid
    have hin : x ∈ mid ++ after := hafter ▸ List.mem_append_left [b] hmem
    refine (List.mem_append.mp hin).resolve_right fun hlate => ?_
    -- the segment ascends by blue work, and a parent has less
    have hsorted : (m ++ [b]).Pairwise fun x y => (e.key x).le (e.key y) := by
      refine List.pairwise_append.mpr ⟨hsort, List.pairwise_singleton _ b, fun z hz b' hb' => ?_⟩
      rw [List.mem_singleton.mp hb']
      have hzor : z ≠ blockhash.origin := by
        rintro rfl
        obtain ⟨hparent, _⟩ | hnot := hmerge.apart _ hz
        · exact h.origin_not_mem (ready.genesis ▸ hb) hparent
        · exact hnot (ready.origin_reach (hm.known _ hm.mem))
      exact Or.inl (ready.toInv.work_lt (past_iff.mpr (hmerge.sound z hz)) hzor)
    rw [← hafter] at hsorted
    have hle := (List.pairwise_append.mp hsorted).2.2 y hy x hlate
    rcases hle with hlt | ⟨heq, _⟩
    · exact Nat.lt_asymm hless hlt
    · exact Nat.ne_of_gt hless heq

end TaoDag.Ghostdag.DagEngine
