import TaoDag.Ghostdag.Order

namespace TaoDag.Ghostdag.DagEngine

open BlockDag

variable {fr : Reachability.Interval.Fractions} {k : Nat} {genesis : Hash} {e : DagEngine}
  {b c x y : Hash} {d : GhostdagData} {order : List Hash}

theorem selectedParent_mem (inv : e.Inv) (h : e.dag.selectedParent y = some x) :
    x ∈ e.dag.parents y := by
  change (if y = blockhash.origin then none else (e.gd.lookup y).map (·.selectedParent)) = _ at h
  by_cases hy : y = blockhash.origin
  · rw [if_pos hy] at h
    cases h
  · rw [if_neg hy] at h
    obtain ⟨d, hd, rfl⟩ := Option.map_eq_some_iff.mp h
    exact inv.selected hd hy

theorem onChain_reach (inv : e.Inv) (h : e.dag.OnChain x y) : Reach e.dag.parents x y := by
  induction h with
  | refl => exact .refl
  | tail _ hsel ih => exact ih.trans (reach_of_parent (selectedParent_mem inv hsel))

/-- The selected chain ends at genesis. -/
theorem Rooted.onChain_genesis (h : Rooted fr k genesis e) (hx : e.dag.OnChain x e.genesis)
    (hor : x ≠ blockhash.origin) : x = e.genesis := by
  have ready := h.grown.ready_best.1
  rcases Relation.ReflTransGen.cases_tail hx with heq | ⟨q, hq, hsel⟩
  · exact heq.symm
  · have hmem := selectedParent_mem ready.toInv hsel
    rw [ready.genesis, h.grown.recorded.2, List.mem_singleton] at hmem
    exact absurd (onChain_origin (hmem ▸ hq)) hor

/-- A block comes last in the order up to it, after blocks of its past. -/
theorem OrderTo.last (ho : OrderTo e b order) (h : Rooted fr k genesis e)
    (hor : b ≠ blockhash.origin) :
    ∃ before, order = before ++ [b] ∧ ∀ x ∈ before, Past e.dag.parents x b := by
  cases ho with
  | genesis => exact ⟨[], rfl, fun x hx => absurd hx List.not_mem_nil⟩
  | @step b d front m hne hd parent hmerge _ =>
    obtain ⟨hm, _, hsp⟩ := h.merged hne hor hd
    refine ⟨front ++ m, (List.append_assoc front m [b]).symm, fun x hx => ?_⟩
    rcases List.mem_append.mp hx with hx | hx
    · exact past_iff.mpr ⟨_, hm.mem, ((parent.lists h hsp).mem x |>.mp hx).1⟩
    · exact past_iff.mpr (hmerge.sound x hx)

/-- A block that the order has above a block `x` of the selected chain: a block of the chain, or one
that such a block merges. -/
def Above (e : DagEngine) (x : Hash) (rest : List Hash) (y : Hash) : Prop :=
  ∃ c d m, e.gd.lookup c = some d ∧ c ≠ e.genesis ∧ c ≠ blockhash.origin ∧ c ∈ rest ∧
    e.dag.OnChain x d.selectedParent ∧ IsMergeset e d.selectedParent (e.dag.parents c) m ∧
    (y = c ∨ y ∈ m)

/-- The order up to a block starts with the order up to each block of its selected chain. -/
theorem OrderTo.split (ho : OrderTo e b order) (h : Rooted fr k genesis e)
    (hor : b ≠ blockhash.origin) (hx : e.dag.OnChain x b) (hxor : x ≠ blockhash.origin) :
    ∃ front rest, order = front ++ rest ∧ OrderTo e x front ∧ ∀ y ∈ rest, Above e x rest y := by
  induction ho with
  | genesis =>
    rw [h.onChain_genesis hx hxor]
    exact ⟨[e.genesis], [], rfl, .genesis, fun y hy => absurd hy List.not_mem_nil⟩
  | @step b d front m hne hd parent hmerge hsort ih =>
    obtain ⟨_, _, hsp⟩ := h.merged hne hor hd
    rcases (onChain_iff hor hd).mp hx with rfl | hx
    · exact ⟨front ++ (m ++ [x]), [], by simp, .step hne hd parent hmerge hsort,
        fun y hy => absurd hy List.not_mem_nil⟩
    · obtain ⟨first, rest, rfl, hfirst, hrest⟩ := ih hsp hx
      refine ⟨first, rest ++ (m ++ [b]), by simp, hfirst, fun y hy => ?_⟩
      rcases List.mem_append.mp hy with hy | hy
      · obtain ⟨c, d', m', hd', hcne, hcor, hc, hrest⟩ := hrest y hy
        exact ⟨c, d', m', hd', hcne, hcor, List.mem_append_left _ hc, hrest⟩
      · have hb : b ∈ rest ++ (m ++ [b]) := by simp
        rw [List.mem_append, List.mem_singleton] at hy
        exact ⟨b, d, m, hd, hne, hor, hb, hx, hmerge, hy.symm⟩

/-- A block of the selected chain that the order repeats is named by a block `c` of the chain, next
to a selected parent above it. That parent does not come between. -/
def Repeated (e : DagEngine) (x : Hash) (rest : List Hash) : Prop :=
  ∃ c d between later, e.gd.lookup c = some d ∧ c ≠ e.genesis ∧ c ≠ blockhash.origin ∧
    rest = between ++ c :: later ∧ d.selectedParent ∉ between ∧
    Past e.dag.parents x d.selectedParent

theorem OrderTo.repeated (ho : OrderTo e b order) (h : Rooted fr k genesis e)
    (hor : b ≠ blockhash.origin) (hx : e.dag.OnChain x b) {i : Nat} (hi : order[i]? = some x)
    (hrep : x ∈ order.take i) : Repeated e x (order.drop (i + 1)) := by
  have inv := h.grown.ready_best.1.toInv
  induction ho with
  | genesis =>
    cases i with
    | zero => cases hrep
    | succ i => cases hi
  | @step b d front m hne hd parent hmerge hsort ih =>
    obtain ⟨hm, _, hsp⟩ := h.merged hne hor hd
    have hpast : ∀ y ∈ front ++ m, Past e.dag.parents y b := by
      intro y hy
      rcases List.mem_append.mp hy with hy | hy
      · exact past_iff.mpr ⟨_, hm.mem, ((parent.lists h hsp).mem y |>.mp hy).1⟩
      · exact past_iff.mpr (hmerge.sound y hy)
    have hchain : x ∈ front ++ m → e.dag.OnChain x d.selectedParent := by
      intro hmem
      refine ((onChain_iff hor hd).mp hx).resolve_left ?_
      rintro rfl
      exact inv.index.dag.acyclic (hpast x hmem)
    by_cases hfront : i < front.length
    · rw [List.getElem?_append_left hfront] at hi
      rw [List.take_append_of_le_length (Nat.le_of_lt hfront)] at hrep
      have hmem := List.mem_append_left m (List.mem_of_getElem? hi)
      obtain ⟨c, d', between, later, hc, hcne, hcor, hrest, hout, hbelow⟩ :=
        ih hsp (hchain hmem) hi hrep
      refine ⟨c, d', between, later ++ (m ++ [b]), hc, hcne, hcor, ?_, hout, hbelow⟩
      rw [List.drop_append_of_le_length (by omega), hrest]
      simp
    · rw [List.getElem?_append_right (by omega)] at hi
      have htake : (front ++ (m ++ [b])).take i = front ++ (m ++ [b]).take (i - front.length) := by
        rw [List.take_append, List.take_of_length_le (by omega)]
      have hdrop : (front ++ (m ++ [b])).drop (i + 1) = (m ++ [b]).drop (i - front.length + 1) := by
        rw [List.drop_append, List.drop_of_length_le (by omega), List.nil_append]
        congr 1
        omega
      rw [htake] at hrep
      rw [hdrop]
      generalize i - front.length = j at hi hrep
      by_cases hj : j < m.length
      · rw [List.getElem?_append_left hj] at hi
        have hmem := List.mem_of_getElem? hi
        have hreach := onChain_reach inv (hchain (List.mem_append_right front hmem))
        have hne' : x ≠ d.selectedParent := by
          rcases hmerge.apart x hmem with ⟨_, hne'⟩ | hnot
          · exact hne'
          · exact absurd hreach hnot
        refine ⟨b, d, m.drop (j + 1), [], hd, hne, hor, ?_, fun hmem => ?_, ?_⟩
        · rw [List.drop_append_of_le_length (by omega)]
        · rcases hmerge.apart _ (List.mem_of_mem_drop hmem) with ⟨_, hself⟩ | hnot
          · exact hself rfl
          · exact hnot .refl
        · exact (reach_iff.mp hreach).resolve_left hne'
      · rw [List.getElem?_append_right (by omega)] at hi
        have hlast : x = b := List.mem_singleton.mp (List.mem_of_getElem? hi)
        subst hlast
        have hmem : x ∈ front ++ m := by
          rcases List.mem_append.mp hrep with hrep | hrep
          · exact List.mem_append_left _ hrep
          · have hj' : j = m.length := by
              have := (List.getElem?_eq_some_iff.mp hi).1
              simp at this
              omega
            rw [hj', List.take_left'] at hrep
            · exact List.mem_append_right _ hrep
            · rfl
        exact absurd (hpast x hmem) inv.index.dag.acyclic

end TaoDag.Ghostdag.DagEngine
