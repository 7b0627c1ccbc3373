import TaoDag.Ghostdag.Engine
import TaoDag.Reachability.Exact

namespace TaoDag.Ghostdag

open BlockDag

namespace SortableBlock

theorem le_refl (a : SortableBlock) : a.le a := Or.inr ⟨rfl, Nat.le_refl _⟩

theorem le_total (a b : SortableBlock) : a.le b ∨ b.le a := by
  unfold le
  omega

theorem le_trans {a b c : SortableBlock} (h : a.le b) (h' : b.le c) : a.le c := by
  unfold le at *
  omega

theorem le_antisymm {a b : SortableBlock} (h : a.le b) (h' : b.le a) : a = b := by
  obtain ⟨ha, wa⟩ := a
  obtain ⟨hb, wb⟩ := b
  unfold le at h h'
  simp only at h h'
  have hhash : ha = hb := BitVec.eq_of_toNat_eq (by omega)
  have hwork : wa = wb := by omega
  rw [hhash, hwork]

instance : IsTrans SortableBlock le := ⟨fun _ _ _ => le_trans⟩

instance : Std.Total le := ⟨le_total⟩

end SortableBlock

/-- `Iterator::max` returns a greatest element. -/
theorem GhostdagManager.maxSortable_spec (best : SortableBlock) (l : List SortableBlock) :
    GhostdagManager.maxSortable best l ∈ best :: l ∧
      ∀ b ∈ best :: l, b.le (GhostdagManager.maxSortable best l) := by
  induction l generalizing best with
  | nil =>
    refine ⟨List.mem_singleton_self _, fun b hb => ?_⟩
    rw [List.mem_singleton] at hb
    rw [hb]
    exact SortableBlock.le_refl _
  | cons c l ih =>
    rw [GhostdagManager.maxSortable]
    obtain ⟨hmem, hle⟩ := ih (if best.le c then c else best)
    by_cases hbc : best.le c
    · rw [if_pos hbc] at hmem hle ⊢
      refine ⟨List.mem_cons_of_mem _ hmem, List.forall_mem_cons.mpr ⟨?_, hle⟩⟩
      exact SortableBlock.le_trans hbc (hle c (List.mem_cons_self ..))
    · rw [if_neg hbc] at hmem hle ⊢
      have hcb : c.le best := (SortableBlock.le_total best c).resolve_left hbc
      rw [List.forall_mem_cons] at hle
      refine ⟨?_, List.forall_mem_cons.mpr ⟨hle.1, List.forall_mem_cons.mpr ⟨?_, hle.2⟩⟩⟩
      · rcases List.mem_cons.mp hmem with h | h
        · rw [h]
          exact List.mem_cons_self ..
        · exact List.mem_cons_of_mem _ (List.mem_cons_of_mem _ h)
      · exact SortableBlock.le_trans hcb hle.1

namespace DagEngine

/-- The DAG that the engine holds. -/
def dag (e : DagEngine) : Reachability.Dag where
  blocks := e.gd.keys.toFinset
  parents h := (e.relations.lookup h).getD []
  selectedParent h := if h = blockhash.origin then none else (e.gd.lookup h).map (·.selectedParent)

def work (e : DagEngine) (h : Hash) : Nat := (e.gd.lookup h).elim 0 (·.blueWork)

def key (e : DagEngine) (h : Hash) : SortableBlock := ⟨h, e.work h⟩

theorem mem_blocks {e : DagEngine} {h : Hash} : h ∈ e.dag.blocks ↔ ∃ d, e.gd.lookup h = some d := by
  change h ∈ e.gd.keys.toFinset ↔ _
  rw [List.mem_toFinset]
  exact AList.mem_keys.symm.trans (AList.lookup_isSome.symm.trans Option.isSome_iff_exists)

theorem card_blocks {e : DagEngine} : e.dag.blocks.card = e.gd.entries.length := by
  change e.gd.keys.toFinset.card = _
  rw [List.toFinset_card_of_nodup e.gd.keys_nodup]
  exact List.length_map _

/-- The engine's index answers for its DAG, and blue work grows along the edges above ORIGIN. -/
structure Inv (e : DagEngine) : Prop where
  index : Reachability.DagInv blockhash.origin e.dag e.reach
  origin : e.gd.lookup blockhash.origin = some GhostdagManager.originGhostdagData
  selected : ∀ {h d}, e.gd.lookup h = some d → h ≠ blockhash.origin →
    d.selectedParent ∈ e.dag.parents h
  work : ∀ {x y}, x ∈ e.dag.parents y → x ≠ blockhash.origin → e.work x < e.work y

variable {e : DagEngine} {x y h sp : Hash} {l parents : List Hash}

theorem isDagAncestorOf_spec (inv : e.Inv) :
    Returns False (e.isDagAncestorOf x y) (fun r => x ∈ e.dag.blocks ∧ y ∈ e.dag.blocks ∧
      (r = true ↔ Reach e.dag.parents x y)) := by
  refine unwrap_returns ((Reachability.isDagAncestorOf_spec inv.index.store.labelled inv.index.covering
    False.elim False.elim).mono fun r hr => ?_)
  obtain ⟨hx, hy, hr⟩ := hr
  rw [inv.index.nodes] at hx hy
  rw [inv.index.exact hy]
  exact ⟨hx, hy, hr⟩

/-- Every block descends from ORIGIN. -/
theorem Inv.origin_reach (inv : e.Inv) (hx : x ∈ e.dag.blocks) :
    Reach e.dag.parents blockhash.origin x := by
  rw [inv.index.exact hx]
  rw [← inv.index.nodes] at hx
  exact Or.inl (inv.index.store.tree.tree.reach hx)

theorem Inv.origin_mem (inv : e.Inv) : blockhash.origin ∈ e.dag.blocks :=
  mem_blocks.mpr ⟨_, inv.origin⟩

theorem Inv.parents_origin (inv : e.Inv) : e.dag.parents blockhash.origin = [] := by
  refine List.eq_nil_iff_forall_not_mem.mpr fun p hp => ?_
  have hreach := inv.origin_reach (inv.index.dag.closed hp)
  exact inv.index.dag.acyclic (past_iff.mpr ⟨p, hp, hreach⟩)

theorem getData_spec : Returns False (e.getData h) (fun d => e.gd.lookup h = some d) := by
  rw [getData]
  cases hd : e.gd.lookup h with
  | none => exact Returns.error id
  | some d => exact Returns.ok rfl

theorem getParents_spec :
    Returns False (e.getParents h) (fun ps => ps = e.dag.parents h) := by
  have hdag : e.dag.parents h = (e.relations.lookup h).getD [] := rfl
  rw [getParents, hdag]
  cases hp : e.relations.lookup h with
  | none => exact Returns.error id
  | some ps => exact Returns.ok rfl

theorem getBlueWork_spec :
    Returns False (e.manager.getBlueWork h) (fun w => w = e.work h ∧ h ∈ e.dag.blocks) := by
  have hdata : Returns False (unwrap (e.manager.getData h)) _ := unwrap_returns getData_spec
  refine Returns.bind hdata fun d hd => Returns.pure ⟨?_, mem_blocks.mpr ⟨d, hd⟩⟩
  rw [work, hd]
  rfl

theorem sortable_spec :
    Returns False (e.manager.sortable h) (fun b => b = e.key h ∧ h ∈ e.dag.blocks) := by
  refine Returns.bind getBlueWork_spec fun w hw => Returns.pure ⟨?_, hw.2⟩
  rw [hw.1]
  rfl

/-- The selected parent is the greatest parent by blue work, then hash. -/
theorem findSelectedParent_spec :
    Returns False (e.manager.findSelectedParent parents) (fun sp => sp ∈ parents ∧
      (∀ p ∈ parents, p ∈ e.dag.blocks) ∧ ∀ p ∈ parents, (e.key p).le (e.key sp)) := by
  refine Returns.bind (Returns.mapM fun p _ => sortable_spec) fun bs hbs => ?_
  obtain ⟨rfl, hmem⟩ := hbs
  cases parents with
  | nil => exact Returns.error id
  | cons p ps =>
    obtain ⟨hmax, hle⟩ := GhostdagManager.maxSortable_spec (e.key p) (ps.map e.key)
    rw [← List.map_cons] at hmax hle
    obtain ⟨q, hq, hqmax⟩ := List.mem_map.mp hmax
    have hhash : (GhostdagManager.maxSortable (e.key p) (ps.map e.key)).hash = q := by
      rw [← hqmax]
      rfl
    refine Returns.pure ⟨?_, hmem, fun r hr => ?_⟩
    · rw [hhash]
      exact hq
    · rw [hhash, hqmax]
      exact hle _ (List.mem_map_of_mem hr)

/-- `sort_blocks` orders by blue work, then hash. -/
theorem sortBlocks_spec :
    Returns False (e.manager.sortBlocks l) (fun r => r.Perm l ∧
      r.Pairwise (fun a b => (e.key a).le (e.key b)) ∧ ∀ x ∈ l, x ∈ e.dag.blocks) := by
  refine Returns.bind (Returns.mapM fun p _ => sortable_spec) fun bs hbs => Returns.pure ?_
  obtain ⟨rfl, hmem⟩ := hbs
  have hperm := List.perm_insertionSort SortableBlock.le (l.map e.key)
  have hsorted := List.pairwise_insertionSort SortableBlock.le (l.map e.key)
  have hkey : ∀ a ∈ (l.map e.key).insertionSort SortableBlock.le, e.key a.hash = a := by
    intro a ha
    obtain ⟨x, _, rfl⟩ := List.mem_map.mp (hperm.mem_iff.mp ha)
    rfl
  refine ⟨?_, ?_, hmem⟩
  · have := hperm.map SortableBlock.hash
    rwa [List.map_map, show SortableBlock.hash ∘ e.key = id from rfl, List.map_id] at this
  · rw [List.pairwise_map]
    refine hsorted.imp_of_mem fun {a b} ha hb hab => ?_
    rw [hkey a ha, hkey b hb]
    exact hab

/-- How the search for the mergeset of `parents` stands: what it has seen is in the past of a new
block, and a parent of a block it is done with is seen, or reached by the selected parent. -/
structure Searched (e : DagEngine) (sp : Hash) (parents queue mergeset past : List Hash) :
    Prop where
  nodup : mergeset.Nodup
  sound : ∀ x ∈ mergeset, ∃ p ∈ parents, Reach e.dag.parents x p
  apart : ∀ x ∈ mergeset, x ∈ parents ∧ x ≠ sp ∨ ¬Reach e.dag.parents x sp
  start : ∀ p ∈ parents, p ≠ sp → p ∈ mergeset
  queued : ∀ x ∈ queue, x ∈ mergeset
  reached : ∀ x ∈ past, Reach e.dag.parents x sp
  closed : ∀ x ∈ mergeset, x ∈ queue ∨ ∀ p ∈ e.dag.parents x, p ∈ mergeset ∨ p ∈ past

theorem visitParents_spec (inv : e.Inv) {cur : Hash} {rest queue mergeset past : List Hash}
    (hcur : cur ∈ mergeset) (hrest : ∀ p ∈ rest, p ∈ e.dag.parents cur)
    (hdone : ∀ p ∈ e.dag.parents cur, p ∈ rest ∨ p ∈ mergeset ∨ p ∈ past)
    (hs : Searched e sp parents (cur :: queue) mergeset past) :
    Returns False (e.manager.visitParents sp rest queue mergeset past)
      (fun r => Searched e sp parents r.1 r.2.1 r.2.2) := by
  induction rest generalizing queue mergeset past with
  | nil =>
    refine Returns.ok ⟨hs.nodup, hs.sound, hs.apart, hs.start, ?_, hs.reached, fun x hx => ?_⟩
    · exact fun x hx => hs.queued x (List.mem_cons_of_mem _ hx)
    · rcases hs.closed x hx with hq | hq
      · rcases List.mem_cons.mp hq with rfl | hq
        · exact Or.inr fun p hp => (hdone p hp).resolve_left (by simp)
        · exact Or.inl hq
      · exact Or.inr hq
  | cons p rest ih =>
    rw [List.forall_mem_cons] at hrest
    have hdrop : ∀ {m q : List Hash}, p ∈ m ∨ p ∈ q → (∀ x, x ∈ mergeset → x ∈ m) →
        (∀ x, x ∈ past → x ∈ q) → ∀ x ∈ e.dag.parents cur, x ∈ rest ∨ x ∈ m ∨ x ∈ q := by
      intro m q hp hm hq x hx
      rcases hdone x hx with hx | hx | hx
      · rcases List.mem_cons.mp hx with rfl | hx
        · exact Or.inr hp
        · exact Or.inl hx
      · exact Or.inr (Or.inl (hm x hx))
      · exact Or.inr (Or.inr (hq x hx))
    rw [GhostdagManager.visitParents]
    by_cases hseen : p ∈ mergeset ∨ p ∈ past
    · rw [if_pos hseen]
      exact ih hcur hrest.2 (hdrop hseen (fun _ => id) fun _ => id) hs
    · rw [if_neg hseen]
      rw [not_or] at hseen
      refine Returns.bind (isDagAncestorOf_spec inv) fun r hr => ?_
      cases r with
      | true =>
        refine ih hcur hrest.2 (hdrop (Or.inr (by simp)) (fun _ => id) fun x hx => ?_) ?_
        · exact List.mem_append_left _ hx
        · refine ⟨hs.nodup, hs.sound, hs.apart, hs.start, hs.queued, fun x hx => ?_, fun x hx => ?_⟩
          · rcases List.mem_append.mp hx with hx | hx
            · exact hs.reached x hx
            · rw [List.mem_singleton] at hx
              rw [hx]
              exact hr.2.2.mp rfl
          · refine (hs.closed x hx).imp_right fun h q hq => ?_
            exact (h q hq).imp_right (List.mem_append_left _)
      | false =>
        have hnot : ¬Reach e.dag.parents p sp := fun h => by cases hr.2.2.mpr h
        refine ih (List.mem_append_left _ hcur) hrest.2
          (hdrop (Or.inl (by simp)) (fun x hx => List.mem_append_left _ hx) fun _ => id) ?_
        refine ⟨?_, fun x hx => ?_, fun x hx => ?_, fun q hq hne => ?_, fun x hx => ?_, hs.reached,
          fun x hx => ?_⟩
        · rw [List.nodup_append]
          refine ⟨hs.nodup, List.nodup_singleton p, fun a ha b hb hab => ?_⟩
          rw [List.mem_singleton] at hb
          rw [← hb, ← hab] at hseen
          exact hseen.1 ha
        · rcases List.mem_append.mp hx with hx | hx
          · exact hs.sound x hx
          · rw [List.mem_singleton] at hx
            rw [hx]
            obtain ⟨q, hq, hcq⟩ := hs.sound cur hcur
            exact ⟨q, hq, (reach_of_parent hrest.1).trans hcq⟩
        · rcases List.mem_append.mp hx with hx | hx
          · exact hs.apart x hx
          · rw [List.mem_singleton] at hx
            rw [hx]
            exact Or.inr hnot
        · exact List.mem_append_left _ (hs.start q hq hne)
        · rw [← List.cons_append] at hx
          rcases List.mem_append.mp hx with hx | hx
          · exact List.mem_append_left _ (hs.queued x hx)
          · exact List.mem_append_right _ hx
        · rcases List.mem_append.mp hx with hx | hx
          · rcases hs.closed x hx with h | h
            · rw [← List.cons_append]
              exact Or.inl (List.mem_append_left _ h)
            · refine Or.inr fun q hq => ?_
              exact (h q hq).imp_left (List.mem_append_left _)
          · rw [← List.cons_append]
            exact Or.inl (List.mem_append_right _ hx)

theorem mergesetLoop_spec (inv : e.Inv) {fuel : Nat} {queue mergeset past : List Hash}
    (hs : Searched e sp parents queue mergeset past) :
    Returns False (e.manager.mergesetLoop sp fuel queue mergeset past)
      (fun m => ∃ past, Searched e sp parents [] m past) := by
  induction fuel generalizing queue mergeset past with
  | zero => exact Returns.error id
  | succ fuel ih =>
    cases queue with
    | nil => exact Returns.ok ⟨past, hs⟩
    | cons cur queue =>
      have hparents : Returns False (unwrap (e.manager.getParents cur)) _ :=
        unwrap_returns getParents_spec
      refine Returns.bind hparents fun ps hps => ?_
      subst hps
      refine Returns.bind (visitParents_spec inv (hs.queued cur (List.mem_cons_self ..))
        (fun _ hp => hp) (fun _ hp => Or.inl hp) hs) fun r hr => ih hr

/-- The mergeset: it holds every block of the past that the selected parent does not reach, all
other parents, and no block outside that past. -/
structure IsMergeset (e : DagEngine) (sp : Hash) (parents mergeset : List Hash) : Prop where
  nodup : mergeset.Nodup
  sound : ∀ x ∈ mergeset, ∃ p ∈ parents, Reach e.dag.parents x p
  apart : ∀ x ∈ mergeset, x ∈ parents ∧ x ≠ sp ∨ ¬Reach e.dag.parents x sp
  start : ∀ p ∈ parents, p ≠ sp → p ∈ mergeset
  complete : ∀ x, ∀ p ∈ parents, Reach e.dag.parents x p →
    Reach e.dag.parents x sp ∨ x ∈ mergeset

theorem unorderedMergeset_spec (inv : e.Inv) :
    Returns False (e.manager.unorderedMergesetWithoutSelectedParent sp parents)
      (IsMergeset e sp parents) := by
  have hmem : ∀ x, x ∈ (parents.filter (· ≠ sp)).dedup ↔ x ∈ parents ∧ x ≠ sp := by
    intro x
    rw [List.mem_dedup, List.mem_filter, decide_eq_true_eq]
  have hstart : Searched e sp parents (parents.filter (· ≠ sp)) (parents.filter (· ≠ sp)).dedup
      [] := by
    refine ⟨List.nodup_dedup _, fun x hx => ⟨x, ((hmem x).mp hx).1, .refl⟩,
      fun x hx => Or.inl ((hmem x).mp hx), fun p hp hne => (hmem p).mpr ⟨hp, hne⟩,
      fun x hx => List.mem_dedup.mpr hx, fun x hx => ?_, fun x hx => Or.inl (List.mem_dedup.mp hx)⟩
    cases hx
  refine (mergesetLoop_spec inv hstart).mono fun m hm => ?_
  obtain ⟨past, hs⟩ := hm
  have hdown : ∀ {x y}, Reach e.dag.parents x y → Reach e.dag.parents y sp ∨ y ∈ m →
      Reach e.dag.parents x sp ∨ x ∈ m := by
    intro x y hxy
    induction hxy using Relation.ReflTransGen.head_induction_on with
    | refl => exact id
    | @head x z hxz _ ih =>
      intro hy
      rcases ih hy with hz | hz
      · exact Or.inl ((reach_of_parent hxz).trans hz)
      · have hpar := (hs.closed z hz).resolve_left (by simp) x hxz
        rcases hpar with hx | hx
        · exact Or.inr hx
        · exact Or.inl (hs.reached x hx)
  refine ⟨hs.nodup, hs.sound, hs.apart, hs.start, fun x p hp hxp => hdown hxp ?_⟩
  by_cases hpsp : p = sp
  · rw [hpsp]
    exact Or.inl .refl
  · exact Or.inr (hs.start p hp hpsp)

end DagEngine

end TaoDag.Ghostdag
